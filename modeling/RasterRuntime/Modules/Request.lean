import RasterRuntime.Resolver.Packages

/-! # Requests for modules

How the specifier of a `require` becomes the name of a module: names of built-in modules, the
resolver, and the file that a request is resolved against. -/

namespace RasterRuntime.Modules

abbrev Text := List Char

/-- `trim_end_matches('/')`. -/
def trimEnd (s : Text) : Text := (s.reverse.dropWhile (· = '/')).reverse

def stripPrefix (pat s : Text) : Option Text :=
  if pat.isPrefixOf s then some (s.drop pat.length) else none

/-! ### Built-in modules -/

structure ModuleNames where
  ordinary : List Text
  enabledNodeOnly : List Text
  disabledNodeOnly : List Text

namespace ModuleNames

variable (names : ModuleNames)

def disabledNodeBuiltinErrorRequest (request : Text) : Option Text :=
  match stripPrefix "node:".toList (trimEnd request) with
  | some bare => if bare ∈ names.disabledNodeOnly then some (trimEnd request) else none
  | none => none

def resolveBuiltin (request : Text) : Option Text :=
  match stripPrefix "node:".toList (trimEnd request) with
  | some bare =>
    if bare ∈ names.disabledNodeOnly then none
    else if bare ∈ names.enabledNodeOnly then some ("node:".toList ++ bare)
    else if bare ∈ names.ordinary then some bare
    else none
  | none =>
    if trimEnd request ∈ names.disabledNodeOnly then none
    else if trimEnd request ∈ names.ordinary ∧ trimEnd request ∉ names.enabledNodeOnly then
      some (trimEnd request)
    else none

/-- `resolve_builtin_request_for_resolve`. -/
def resolveBuiltinForResolve (request : Text) : Option Text :=
  if request.getLast? = some '/' then none else names.resolveBuiltin request

/-- `resolve_require_builtin_request`. -/
def resolveRequireBuiltin (request : Text) : Option Text :=
  (names.resolveBuiltinForResolve request).map fun resolved =>
    if "node:".toList.isPrefixOf request then request else resolved

end ModuleNames

/-! ### Resolution -/

/-- What the loader does not decide itself. The answers of `require_resolve` may change with time,
as the file system does. -/
structure World where
  names : ModuleNames
  /-- `resolve_path` of one path, in the current directory. -/
  resolvePath : Text → Text
  /-- `require_resolve` at a time, of a request and the file it comes from. -/
  requireResolve : ℕ → Text → Text → Option Text

/-- The loader over a file system that does not change, in a current directory. -/
def World.ofFiles (names : ModuleNames) (pkgs : Resolver.Packages) (env : Resolver.Env)
    (cwd : Path.Dir) : World where
  names := names
  resolvePath path := Path.resolvePath cwd [path]
  requireResolve _ request base :=
    (Resolver.requireResolve (Resolver.bare pkgs) env cwd request base).toOption

/-- The errors of the facade. -/
inductive LoadError
  | unknownBuiltin (request : Text)
  | notFound (request parent : Text)
  /-- An argument that is `undefined` where an object is expected. -/
  | notObject
  deriving DecidableEq, Repr

def LoadError.message : LoadError → Text
  | .unknownBuiltin request => "No such built-in module: ".toList ++ request
  | .notFound request parent =>
    "Cannot find module '".toList ++ request ++ "' from '".toList ++ parent ++ "'".toList
  | .notObject => "Error converting from js 'undefined' into type 'object'".toList

def LoadError.code : LoadError → Option Text
  | .unknownBuiltin _ => some "ERR_UNKNOWN_BUILTIN_MODULE".toList
  | .notFound _ _ => some "MODULE_NOT_FOUND".toList
  | .notObject => none

section Resolution

variable (W : World) (time : ℕ)

/-- `default_resolve_filename` of a request from the file `base`, without `options.paths`. -/
def defaultResolveFilename (request base : Text) : Except LoadError Text :=
  match W.names.disabledNodeBuiltinErrorRequest request with
  | some request => .error (.unknownBuiltin request)
  | none =>
    match W.names.resolveBuiltinForResolve request with
    | some resolved => .ok resolved
    | none =>
      match W.requireResolve time request base with
      | some resolved => .ok resolved
      | none => .error (.notFound request base)

def cjsImportPrefix : Text := "__cjs:".toList

def bytecodeFileExt : Text := ".lrt".toList

/-- A bare specifier without separators at its end. -/
def trimBare (specifier : Text) : Text :=
  if specifier.head? ≠ some '.' ∧ specifier.head? ≠ some '/' ∧
      ¬ "file://".toList.isPrefixOf specifier then trimEnd specifier
  else specifier

/-- A module that is to be loaded. -/
structure Import where
  name : Text
  /-- Built-in modules, bytecode and `__cjs:` imports do not go through the extension handlers. -/
  viaImport : Bool
  deriving DecidableEq, Repr

/-- The module of a name that the resolver gave. -/
def importOfResolved (resolved : Text) : Except LoadError Import :=
  if bytecodeFileExt.isSuffixOf resolved then .ok ⟨resolved, true⟩
  else
    match W.names.disabledNodeBuiltinErrorRequest resolved with
    | some request => .error (.unknownBuiltin request)
    | none =>
      match W.names.resolveBuiltin resolved with
      | some builtin => .ok ⟨builtin, true⟩
      | none => .ok ⟨resolved, false⟩

/-- The first part of `require_from_module`: the module that a specifier in the file `base`
names. -/
def importOf (specifier base : Text) : Except LoadError Import :=
  if cjsImportPrefix.isPrefixOf specifier then
    .ok ⟨specifier.drop cjsImportPrefix.length, true⟩
  else
    match W.names.disabledNodeBuiltinErrorRequest (trimBare specifier) with
    | some request => .error (.unknownBuiltin request)
    | none => do
      let resolved ← defaultResolveFilename W time (trimBare specifier) base
      importOfResolved W resolved

/-! ### `require.resolve` -/

/-- `canonical_parent_filename` without a parent: the script that the engine reports. -/
def canonicalScript (script : Text) : Text :=
  W.resolvePath (Resolver.trimStartMatches cjsImportPrefix script.length script)

/-- The options of a `resolve`, as its caller passes them. -/
inductive OptionsArg
  | missing
  | undefined
  /-- An object without `paths`. -/
  | object
  deriving DecidableEq, Repr

/-- The conversion to `Opt<Object>`: an argument may be missing, but one that is there is an
object. -/
def OptionsArg.toObject : OptionsArg → Except LoadError Unit
  | .missing | .object => .ok ()
  | .undefined => .error .notObject

/-- What a parameter of a JavaScript function holds. -/
def OptionsArg.parameter : OptionsArg → OptionsArg
  | .missing => .undefined
  | options => options

/-- `global_require_resolve_impl`, called in a script. -/
def globalRequireResolve (script request : Text) (options : OptionsArg) :
    Except LoadError Text := do
  options.toObject
  match W.names.resolveRequireBuiltin request with
  | some resolved => .ok resolved
  | none => defaultResolveFilename W time request (canonicalScript W script)

/-- The name of the script of code that the runtime evaluates without a file name. -/
def evalScript : Text := "eval_script".toList

/-- The `resolve` of the function that `make_module_require` builds: it calls the global one, from
the script that defines it, and always with two arguments. -/
def moduleRequireResolve (request : Text) (options : OptionsArg) : Except LoadError Text :=
  globalRequireResolve W time evalScript request options.parameter

end Resolution

end RasterRuntime.Modules
