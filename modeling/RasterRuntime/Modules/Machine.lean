import RasterRuntime.Modules.Loader
import RasterRuntime.Transition

/-! # Programs that load modules

The code of modules is arbitrary: at any time the code that runs can call a `require`, of its own
module or of another one it got hold of, assign to the exports of a module, return from the body of
the innermost load, or throw out of it. A run is a list of such actions, and its log says what
happened to which module. -/

namespace RasterRuntime.Modules

open Option (some_inj)

/-- What happens to a module: its load begins, its body begins with its exports, its exports are
assigned, its body ends with its exports or throws, and a `require` of it returns a value at
once. -/
inductive Event
  | loading (name : Text) (r : Ref)
  | started (name : Text) (r : Ref) (v : Value)
  | assigned (r : Ref) (v : Value)
  | finished (name : Text) (r : Ref) (v : Value)
  | threw (name : Text) (r : Ref)
  | returned (name : Text) (v : Value)
  deriving DecidableEq, Repr

/-- The loader, the loads that are under way with the innermost first, and what happened. -/
structure Machine where
  loader : Loader
  stack : List Frame
  log : List Event
  time : ℕ

def Machine.initial : Machine := ⟨.empty, [], [], 0⟩

/-! ### Extension handlers -/

inductive Handler
  | js
  | json
  | node
  deriving DecidableEq, Repr

/-- The loop of `find_longest_registered_extension` over a base name. -/
def longestRegistered (registered : List Text) : Bool → Text → Text
  | _, [] => ".js".toList
  | first, c :: s =>
    if c = '.' ∧ ¬ first ∧ c :: s ∈ registered then c :: s else longestRegistered registered false s

/-- The keys of `require.extensions` with the default handlers, native addons included. -/
def defaultExtensions : List Text := [".js".toList, ".json".toList, ".node".toList]

/-- The part of a path behind its last separator. -/
def baseName (path : Text) : Text :=
  match Path.findLastSep path with
  | some i => path.drop (i + 1)
  | none => path

/-- The handler that `call_extension_handler` calls. -/
def handlerOf (name : Text) : Handler :=
  let ext := longestRegistered defaultExtensions true (baseName name)
  if ext = ".json".toList then .json else if ext = ".node".toList then .node else .js

/-! ### Steps -/

/-- What the code that runs can do. -/
inductive Action
  /-- `require` of a CommonJS module, that is `module.require`. -/
  | moduleRequire (module : Ref) (specifier : Text)
  /-- The global `require`, called in a script. -/
  | globalRequire (script specifier : Text)
  /-- A function that `createRequire` made. -/
  | requireFrom (filename specifier : Text)
  | resolveFrom (filename request : Text)
  /-- `new Module(id, parent)`. -/
  | construct (id : Text) (parent : Option Ref)
  /-- `module.exports = v`. -/
  | assign (module : Ref) (v : Value)
  /-- The handler for `.js` has read and compiled the file, and calls its body. -/
  | begin
  /-- Another handler returns with the exports. -/
  | produce (v : Value)
  /-- The body returns; an import ends with the exports `v`. -/
  | finish (v : Value)
  | throw

namespace Machine

variable (m : Machine)

/-- The machine after events. -/
def note (s : Loader) (stack : List Frame) (events : List Event) : Machine :=
  ⟨s, stack, m.log ++ events, m.time + 1⟩

/-- A call of `require` has come as far as it does on its own. -/
def entered : Entered × Loader → Machine
  | (.failed _, s) => m.note s m.stack []
  | (.returned name v, s) => m.note s m.stack [.returned name v]
  | (.loading f, s) => m.note s (f :: m.stack) [.loading f.name f.record]

/-- The body of a load begins; the guard makes the module the current one. -/
def beginBody (f : Frame) (rest : List Frame) : Machine :=
  m.note { m.loader with current := some f.record }
    ({ f with guard := some m.loader.current } :: rest)
    [.started f.name f.record (m.loader.exportsOf f.record)]

/-- A load ends well, with the exports the record has by then. -/
def endLoad (s : Loader) (f : Frame) (rest : List Frame) (events : List Event) : Machine :=
  m.note ((s.dropGuard f).complete f.name f.record) rest
    (events ++ [.finished f.name f.record (s.exportsOf f.record)])

/-- A load fails. -/
def failLoad (f : Frame) (rest : List Frame) : Machine :=
  m.note ((m.loader.dropGuard f).rollback f.name) rest [.threw f.name f.record]

end Machine

/-- The module that calls `require`, whether it gets new modules as its children, and the loader
after the record of the module was made, if it had none. -/
def callerOf (W : World) (m : Machine) : Action → Option (Ref × Bool × Loader × Text)
  | .moduleRequire module specifier =>
    if module < m.loader.records.length then some (module, true, m.loader, specifier) else none
  | .globalRequire script specifier =>
    match m.loader.current with
    | some current => some (current, true, m.loader, specifier)
    | none =>
      let (parent, s) := m.loader.getOrCreate W (canonicalScript W script) none
      some (parent, false, s, specifier)
  | .requireFrom filename specifier =>
    let (parent, s) := m.loader.getOrCreate W filename none
    some (parent, true, s, specifier)
  | _ => none

/-- The actions that are no calls of `require`. -/
def otherStep (W : World) (m : Machine) : Action → Option Machine
  | .resolveFrom filename request =>
    match W.names.resolveRequireBuiltin request with
    | some _ => some (m.note m.loader m.stack [])
    | none => some (m.note (m.loader.getOrCreate W filename none).2 m.stack [])
  | .construct id parent => some (m.note (m.loader.construct W id parent) m.stack [])
  | .assign module v =>
    if module < m.loader.records.length then
      some (m.note (m.loader.setExports module v) m.stack [.assigned module v])
    else none
  | .finish v =>
    match m.stack with
    | f :: rest =>
      if f.viaImport then
        some (m.endLoad (m.loader.setExports f.record v) f rest [.assigned f.record v])
      else some (m.endLoad m.loader f rest [])
    | [] => none
  | .throw =>
    match m.stack with
    | f :: rest => some (m.failLoad f rest)
    | [] => none
  | _ => none

/-- The actions of a handler that has not called a body. -/
def readStep (m : Machine) (f : Frame) (rest : List Frame) : Action → Option Machine
  | .begin => if handlerOf f.name = .js then some (m.beginBody f rest) else none
  | .produce v =>
    if handlerOf f.name = .js then none
    else
      some (m.endLoad (m.loader.setExports f.record v) f rest
        [.started f.name f.record (m.loader.exportsOf f.record), .assigned f.record v])
  | .throw => some (m.failLoad f rest)
  | _ => none

/-- One action. -/
def step (W : World) (m : Machine) (a : Action) : Option Machine :=
  match m.stack.head? with
  | some ⟨name, r, viaImport, none⟩ => readStep m ⟨name, r, viaImport, none⟩ m.stack.tail a
  | _ =>
    match callerOf W m a with
    | some (parent, link, s, specifier) =>
      some (m.entered (requireFromModule W m.time s parent specifier link))
    | none => otherStep W m a

variable {W : World} {m m' : Machine} {a : Action}

/-- The actions of a handler that reads, the calls of `require`, and the others. -/
theorem step_cases (h : step W m a = some m') :
    (∃ f rest, m.stack = f :: rest ∧ f.guard = none ∧ readStep m f rest a = some m') ∨
      (∀ f ∈ m.stack.head?, f.guard ≠ none) ∧
        ((∃ parent link s specifier, callerOf W m a = some (parent, link, s, specifier) ∧
          m' = m.entered (requireFromModule W m.time s parent specifier link)) ∨
          callerOf W m a = none ∧ otherStep W m a = some m') := by
  unfold step at h
  split at h
  · rename_i name r viaImport hhead
    obtain ⟨rest, hstack⟩ := List.head?_eq_some_iff.mp hhead
    refine .inl ⟨_, rest, hstack, rfl, ?_⟩
    rwa [hstack] at h
  · rename_i hhead
    refine .inr ⟨?_, ?_⟩
    · rintro ⟨name, r, viaImport, guard⟩ hf rfl
      exact hhead name r viaImport hf
    · split at h
      · exact .inl ⟨_, _, _, _, ‹_›, (some_inj.mp h).symm⟩
      · exact .inr ⟨‹_›, h⟩

theorem readStep_cases {f : Frame} {rest : List Frame} (h : readStep m f rest a = some m') :
    (a = .begin ∧ m' = m.beginBody f rest) ∨
      (∃ v, a = .produce v ∧ m' = m.endLoad (m.loader.setExports f.record v) f rest
        [.started f.name f.record (m.loader.exportsOf f.record), .assigned f.record v]) ∨
      a = .throw ∧ m' = m.failLoad f rest := by
  revert h
  fun_cases readStep m f rest a
  all_goals rintro ⟨⟩
  · exact .inl ⟨rfl, rfl⟩
  · exact .inr (.inl ⟨_, rfl, rfl⟩)
  · exact .inr (.inr ⟨rfl, rfl⟩)

theorem otherStep_cases (h : otherStep W m a = some m') :
    (∃ s, m' = m.note s m.stack [] ∧
        (s = m.loader ∨ (∃ filename, s = (m.loader.getOrCreate W filename none).2) ∨
          ∃ id parent, s = m.loader.construct W id parent)) ∨
      (∃ r v, m' = m.note (m.loader.setExports r v) m.stack [.assigned r v]) ∨
      ∃ f rest, m.stack = f :: rest ∧
        ((∃ v, a = .finish v ∧ f.viaImport ∧
            m' = m.endLoad (m.loader.setExports f.record v) f rest [.assigned f.record v]) ∨
          (∃ v, a = .finish v ∧ f.viaImport = false ∧ m' = m.endLoad m.loader f rest []) ∨
          a = .throw ∧ m' = m.failLoad f rest) := by
  revert h
  fun_cases otherStep W m a
  all_goals rintro ⟨⟩
  · exact .inl ⟨_, rfl, .inl rfl⟩
  · exact .inl ⟨_, rfl, .inr (.inl ⟨_, rfl⟩)⟩
  · exact .inl ⟨_, rfl, .inr (.inr ⟨_, _, rfl⟩)⟩
  · exact .inr (.inl ⟨_, _, rfl⟩)
  · exact .inr (.inr ⟨_, _, ‹_›, .inl ⟨_, rfl, ‹_›, rfl⟩⟩)
  · next hvia => exact .inr (.inr ⟨_, _, ‹_›, .inr (.inl ⟨_, rfl, eq_false_of_ne_true hvia, rfl⟩)⟩)
  · exact .inr (.inr ⟨_, _, ‹_›, .inr (.inr ⟨rfl, rfl⟩)⟩)

theorem callerOf_loader {parent : Ref} {link : Bool} {s : Loader} {specifier : Text}
    (h : callerOf W m a = some (parent, link, s, specifier)) :
    s = m.loader ∨ ∃ n, s = (m.loader.getOrCreate W n none).2 := by
  revert h
  fun_cases callerOf W m a
  all_goals rintro ⟨⟩
  iterate 2 exact .inl rfl
  iterate 2 exact .inr ⟨_, (congrArg Prod.snd ‹_›).symm⟩

end RasterRuntime.Modules
